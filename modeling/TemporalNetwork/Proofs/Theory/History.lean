/-
Histories of a theory.

A request takes a theory through turns: at the root it extends the
problem, at any level it propagates, and it opens and closes levels.
`Turn` lists them for a theory together with the states saved below it,
and each turn keeps the stack of these states in order. A request is a
run of turns, so that what turns keep holds after any history.

# What holds after any history

The states that can arise are settled: `settled_of_performAll`. From this
follow the two statements that make a theory of use: its verdict is
exact, and so are the bounds of its timepoints.
-/
import TemporalNetwork.Proofs.Theory.Checkpoint
import TemporalNetwork.Proofs.Theory.Equivalence
import TemporalNetwork.Theory.Query
import TemporalNetwork.Theory.Request

namespace TemporalNetwork

namespace Theory

variable {t t' u : Theory} {ts ts' : List Theory} {l : Literal} {p q : List Theory × Theory}

-- =================================================================== turns

/-- What a request does at a time, to the theory and to the states that
are saved below it. -/
inductive Turn : List Theory × Theory → List Theory × Theory → Prop where
  /-- At the root, where the problem can be extended. -/
  | settled {t t' : Theory} (settles : Settles t t') : Turn ([], t) ([], t')
  /-- At any level. -/
  | recorded {t t' : Theory} {ts : List Theory} (settles : Settles t t')
      (extended : Extends t t') : Turn (ts, t) (ts, t')
  | opened {t : Theory} {ts : List Theory} : Turn (ts, t) (t :: ts, t.saved)
  | closed {t₀ t u : Theory} {ts : List Theory} (returns : Returns t₀ t u) :
      Turn (t₀ :: ts, t) (ts, u)

/-- Turns, one after the other. -/
abbrev Turns : List Theory × Theory → List Theory × Theory → Prop := Relation.ReflTransGen Turn

theorem Turn.run (h : Turn p q) : Turns p q := .single h

/-- A turn leaves the saved states in order below the theory. -/
theorem Turn.stack (h : Turn p q) (hp : Stack p.1 p.2) : Stack q.1 q.2 := by
  cases h with
  | settled settles => exact hp.settles settles
  | recorded settles extended => exact hp.extends extended settles.settled
  | opened => exact hp.saved
  | closed returns =>
      cases hp with
      | above settled extended below =>
          exact below.extends returns.agrees.extends
            (returns.agrees.settled below.settled returns.rest)

theorem Turns.stack (h : Turns p q) (hp : Stack p.1 p.2) : Stack q.1 q.2 := by
  induction h with
  | refl => exact hp
  | tail _ hturn ih => exact hturn.stack ih

/-- Closing a level does not take the problem back. -/
theorem Stack.network_of_returns {t₀ : Theory} (h : Stack (t₀ :: ts) t)
    (hreturns : Returns t₀ t u) : u.network = t.network := by
  cases h with
  | above settled extended below => exact hreturns.agrees.network.trans extended.network.symm

/-- The problem of a theory never shrinks. -/
theorem Turn.grows (h : Turn p q) (hp : Stack p.1 p.2) : p.2.network.Grows q.2.network := by
  cases h with
  | settled settles => exact settles.changes.grows
  | recorded settles extended => exact settles.changes.grows
  | opened => exact .refl _
  | closed returns =>
      show Network.Grows _ _
      rw [hp.network_of_returns returns]
      exact .refl _

theorem Turns.grows (h : Turns p q) (hp : Stack p.1 p.2) : p.2.network.Grows q.2.network := by
  induction h with
  | refl => exact .refl _
  | tail hturns hturn ih => exact ih.trans (hturn.grows (Turns.stack hturns hp))

/-- A fact that is watched stays watched: levels are closed onto states
of the same problem. -/
theorem Turn.watches (h : Turn p q) (hp : Stack p.1 p.2) (d : Direction) (x : Timepoint) :
    p.2.bindings.watches d x ⊆ q.2.bindings.watches d x := by
  cases h with
  | settled settles => exact settles.changes.watches d x
  | recorded settles extended => exact settles.changes.watches d x
  | opened => exact List.Subset.refl _
  | closed returns =>
      cases hp with
      | above settled extended below =>
          have hbindings := returns.agrees.bindings.trans extended.bindings.symm
          show _ ⊆ Bindings.watches _ d x
          rw [hbindings]
          exact List.Subset.refl _

theorem Turns.watches (h : Turns p q) (hp : Stack p.1 p.2) (d : Direction) (x : Timepoint) :
    p.2.bindings.watches d x ⊆ q.2.bindings.watches d x := by
  induction h with
  | refl => exact List.Subset.refl _
  | tail hturns hturn ih => exact List.Subset.trans ih (hturn.watches (Turns.stack hturns hp) d x)

/-- Nor does a turn give up a variable, also where it goes back. -/
theorem Turn.hasVariable (h : Turn p q) {v : BoolVar} (hv : p.2.hasVariable v = true) :
    q.2.hasVariable v = true := by
  cases h with
  | settled settles => exact settles.changes.hasVariable hv
  | recorded settles extended => exact settles.changes.hasVariable hv
  | opened => exact hv
  | closed returns =>
      have hlt := (HandleVector.contains_iff _ _).mp hv
      apply (HandleVector.contains_iff _ _).mpr
      rw [returns.size]
      exact hlt

theorem Turns.hasVariable (h : Turns p q) {v : BoolVar} (hv : p.2.hasVariable v = true) :
    q.2.hasVariable v = true := by
  induction h with
  | refl => exact hv
  | tail _ hturn ih => exact hturn.hasVariable ih

-- ======================================================= requests as turns

/-- A new variable makes no difference to all that was there. -/
theorem agrees_newVariable (t : Theory) : Agrees t t.newVariable.1 where
  network := rfl
  bindings := rfl
  graph := rfl
  size := (extended_newVariable t).size
  known := (extended_newVariable t).known
  log := rfl
  conflict := rfl
  assignmentEvents := rfl
  assignmentMarks := rfl
  implicationEvents := rfl
  implicationMarks := rfl

theorem agrees_configure (t : Theory) (c : Config) : Agrees t { t with config := c } :=
  ⟨rfl, rfl, rfl, Nat.le_refl _, fun _ => rfl, rfl, rfl, rfl, rfl, rfl, rfl⟩

theorem extended_configure (t : Theory) (c : Config) : Extended t { t with config := c } :=
  ⟨.refl _, fun _ _ => List.Subset.refl _, Nat.le_refl _, fun _ => rfl, rfl, rfl, rfl, rfl, rfl⟩

theorem turns_newVariable (ht : t.Settled) : Turns (ts, t) (ts, t.newVariable.1) :=
  (Turn.recorded (settles_newVariable ht) (agrees_newVariable t).extends).run

/-- Changing the options is one turn. -/
theorem turns_configure (ht : t.Settled) (c : Config) :
    Turns (ts, t) (ts, { t with config := c }) :=
  (Turn.recorded ⟨(agrees_configure t c).settled ht ht.rest, (extended_configure t c).run⟩
    (agrees_configure t c).extends).run

/-- Propagation is one turn. -/
theorem turns_propagate (ht : t.Settled) (h : t.propagate = .ok t') :
    Turns (ts, t) (ts, t') := by
  obtain ⟨hsettled, hadvances⟩ := settled_propagate ht.coherent ht.covered ht.fired h
  exact (Turn.recorded ⟨hsettled, hadvances.steps.changes⟩ hadvances.steps.extends).run

section
variable {R : List Theory × Theory → List Theory × Theory → Prop}
  (closed : ∀ {t₀ t u : Theory} {ts : List Theory}, t.restoreLast = .ok u → Returns t₀ t u →
    R (t₀ :: ts, t) (ts, u))
include closed

/-- Going back is a run of whatever closes one level. -/
theorem runs_restoreTimes {n : Nat} (hts : Stack ts t) (h : t.restoreTimes n = .ok u) :
    Relation.ReflTransGen R (ts, t) (ts.drop n, u) ∧ Stack (ts.drop n) u := by
  induction n generalizing ts t with
  | zero =>
      cases h
      exact ⟨.refl, hts⟩
  | succ n ih =>
      unfold restoreTimes at h
      rw [Checked.bind_eq_ok] at h
      obtain ⟨t₁, hlast, hrest⟩ := h
      obtain ⟨t₀, rest, rfl, hreturns, hstack⟩ := hts.restoreLast hlast
      rw [List.drop_succ_cons]
      obtain ⟨hrun, hstack'⟩ := ih hstack hrest
      exact ⟨.head (closed hlast hreturns) hrun, hstack'⟩

/-- Going back to a level closes as many levels as are above it. -/
theorem runs_restore {level : DecisionLevel} (hts : Stack ts t) (h : t.restore level = .ok u) :
    Relation.ReflTransGen R (ts, t) (ts.drop (ts.length - level.depth), u) ∧
      Stack (ts.drop (ts.length - level.depth)) u := by
  have hdepth : t.level.depth = ts.length := hts.depth
  unfold restore at h
  rw [hdepth] at h
  exact runs_restoreTimes closed hts h

/-- Where the level is not open nothing is closed. -/
theorem runs_backtrack {level : DecisionLevel} {r : Except Misuse Unit} (hts : Stack ts t)
    (h : t.backtrack level = .ok (u, r)) :
    ∃ ts', Relation.ReflTransGen R (ts, t) (ts', u) ∧ ts' <:+ ts := by
  unfold backtrack at h
  split at h
  next =>
    cases h
    exact ⟨ts, .refl, List.suffix_refl ts⟩
  next =>
    simp only [Checked.map_eq_ok, Prod.mk.injEq] at h
    obtain ⟨t₁, hrestore, rfl, -⟩ := h
    exact ⟨_, (runs_restore closed hts hrestore).1, List.drop_suffix _ _⟩

/-- Levels are closed twice before one is opened. -/
theorem runs_popTo (opened : ∀ {t : Theory} {ts : List Theory}, R (ts, t) (t :: ts, t.saved))
    {level : DecisionLevel} {r : Except Misuse Unit} (hts : Stack ts t)
    (h : t.popTo level = .ok (u, r)) : ∃ ts', Relation.ReflTransGen R (ts, t) (ts', u) := by
  unfold popTo at h
  split at h
  next =>
    obtain ⟨ts', hrun, -⟩ := runs_backtrack closed hts h
    exact ⟨ts', hrun⟩
  next parent hparent =>
    split at h
    next =>
      cases h
      exact ⟨ts, .refl⟩
    next =>
      simp only [Checked.bind_eq_ok, Checked.pure_eq_ok, Prod.mk.injEq,
        pushCheckpoint_eq_ok] at h
      obtain ⟨t₁, hfirst, t₂, hsecond, t₃, ⟨-, rfl⟩, -, -, rfl, -⟩ := h
      obtain ⟨hrun₁, hts₁⟩ := runs_restore closed hts hfirst
      obtain ⟨hrun₂, -⟩ := runs_restore closed hts₁ hsecond
      exact ⟨_, (hrun₁.trans hrun₂).tail opened⟩

end

theorem turns_restoreTimes {n : Nat} (hts : Stack ts t) (h : t.restoreTimes n = .ok u) :
    Turns (ts, t) (ts.drop n, u) :=
  (runs_restoreTimes (fun _ hreturns => Turn.closed hreturns) hts h).1

/-- Going back leaves the problem as it is. -/
theorem sameProblem_restoreTimes {n : Nat} (hts : Stack ts t) (h : t.restoreTimes n = .ok u) :
    u.network = t.network ∧ u.values.size = t.values.size := by
  induction n generalizing ts t with
  | zero =>
      cases h
      exact ⟨rfl, rfl⟩
  | succ n ih =>
      unfold restoreTimes at h
      rw [Checked.bind_eq_ok] at h
      obtain ⟨t₁, hlast, hrest⟩ := h
      obtain ⟨t₀, rest, rfl, hreturns, hstack⟩ := hts.restoreLast hlast
      obtain ⟨hnetwork, hsize⟩ := ih hstack hrest
      exact ⟨hnetwork.trans (hts.network_of_returns hreturns), hsize.trans hreturns.size⟩

theorem turns_restore {level : DecisionLevel} (hts : Stack ts t) (h : t.restore level = .ok u) :
    Turns (ts, t) (ts.drop (ts.length - level.depth), u) :=
  (runs_restore (fun _ hreturns => Turn.closed hreturns) hts h).1

/-- The level below the present one is where the last saved state is. -/
theorem backtrack_parent {t₀ : Theory} {r : Except Misuse Unit} (hts : Stack (t₀ :: ts) t)
    (h : t.backtrack (t.level.parent?.getD .root) = .ok (u, r)) :
    Returns t₀ t u ∧ Stack ts u := by
  have hlevel : t.level = ⟨ts.length + 1⟩ := by
    have hdepth := hts.depth
    rw [List.length_cons] at hdepth
    show (⟨t.log.marks.length⟩ : DecisionLevel) = _
    rw [hdepth]
  have hparent : t.level.parent?.getD .root = ⟨ts.length⟩ := by
    rw [hlevel]
    rfl
  rw [hparent] at h
  unfold backtrack at h
  rw [hlevel, if_neg (Nat.not_lt.mpr (Nat.le_succ _)), Checked.map_eq_ok] at h
  obtain ⟨t₁, hrestore, heq⟩ := h
  cases heq
  unfold restore at hrestore
  rw [hlevel] at hrestore
  simp only [Nat.add_sub_cancel_left] at hrestore
  unfold restoreTimes at hrestore
  rw [Checked.bind_eq_ok] at hrestore
  obtain ⟨t₂, hlast, hdone⟩ := hrestore
  cases hdone
  obtain ⟨t₁, rest, heq, hreturns, hstack⟩ := hts.restoreLast hlast
  cases heq
  exact ⟨hreturns, hstack⟩

/-- Going back takes turns that each close a level. -/
theorem turns_backtrack {level : DecisionLevel} {r : Except Misuse Unit} (hts : Stack ts t)
    (h : t.backtrack level = .ok (u, r)) :
    ∃ ts', Turns (ts, t) (ts', u) ∧ ts' <:+ ts :=
  runs_backtrack (fun _ hreturns => Turn.closed hreturns) hts h

theorem turns_popTo {level : DecisionLevel} {r : Except Misuse Unit} (hts : Stack ts t)
    (h : t.popTo level = .ok (u, r)) : ∃ ts', Turns (ts, t) (ts', u) :=
  runs_popTo (fun _ hreturns => Turn.closed hreturns) Turn.opened hts h

/-- A request is answered in its own words. -/
theorem replying_eq_ok {α : Type} {step : Checked (Theory × α)} {f : α → Reply} {reply : Reply} :
    replying step f = .ok (t', reply) ↔ ∃ a, step = .ok (t', a) ∧ f a = reply := by
  unfold replying
  simp only [Checked.map_eq_ok, Prod.mk.injEq]
  constructor
  · rintro ⟨⟨t₁, a⟩, hstep, rfl, ha⟩
    exact ⟨a, hstep, ha⟩
  · rintro ⟨a, hstep, ha⟩
    exact ⟨(t', a), hstep, rfl, ha⟩

/-- A minimal delay is an edge the other way, with the negated weight. -/
theorem outcome_addMinDelay (ht : t.Settled) {a b : Timepoint} {delay : Int}
    {r : Except Refusal EdgeId} (h : t.addMinDelay a b delay = .ok (t', r)) :
    Outcome t t' r fun _ => t'.network = t.network.addEdge ⟨b, a, -delay, .permanent⟩ := by
  unfold addMinDelay at h
  rw [Checked.bind_eq_ok] at h
  obtain ⟨weight, hweight, hrun⟩ := h
  obtain ⟨-, rfl⟩ := int32_eq_ok.mp hweight
  exact outcome_addPermanentEdge ht hrun

/-- The request adds to the problem. -/
def Request.isSetup : Request → Bool
  | .configure _ | .assign _ | .propagate | .pushCheckpoint | .backtrack _ | .popTo _
  | .restoreLast | .reset => false
  | _ => true

/-- What a request does that sets up the problem: nothing if it is
refused, or it adds a variable, or it extends the problem at the root. -/
inductive SetsUp (t t' : Theory) : Prop where
  | refused (same : t' = t)
  | declared (added : t' = t.newVariable.1)
  | extended (root : t.level = .root) (settles : Settles t t')

/-- A request was refused, or extended the problem at the root. -/
theorem Outcome.setsUp {α : Type} {r : Except Refusal α} {P : α → Prop} (h : Outcome t t' r P) :
    SetsUp t t' := by
  rcases h with ⟨refusal, -, hsame⟩ | ⟨a, -, hroot, hsettles, -⟩
  · exact .refused hsame
  · exact .extended hroot hsettles

/-- All requests that set up the problem do one of three things. -/
theorem setsUp_perform {r : Request} {reply : Reply} (ht : t.Settled) (hr : r.isSetup = true)
    (h : t.perform r = .ok (t', reply)) : SetsUp t t' := by
  cases r with
  | newVariable =>
      cases h
      exact .declared rfl
  | newLiteral =>
      cases h
      exact .declared rfl
  | newTimepoint domain =>
      obtain ⟨a, hrun, -⟩ := replying_eq_ok.mp h
      exact (outcome_newTimepoint ht hrun).setsUp
  | addPermanentEdge source target weight =>
      obtain ⟨a, hrun, -⟩ := replying_eq_ok.mp h
      exact (outcome_addPermanentEdge ht hrun).setsUp
  | addConditionalEdge source target weight guard =>
      obtain ⟨a, hrun, -⟩ := replying_eq_ok.mp h
      exact (outcome_addEdge ht hrun).setsUp
  -- a constraint is a permanent or a conditional edge
  | addConstraint source target weight guard =>
      obtain ⟨a, hrun, -⟩ := replying_eq_ok.mp h
      cases guard with
      | none => exact (outcome_addPermanentEdge ht hrun).setsUp
      | some guard =>
          have hrun' : t.addEdge ⟨source, target, weight, .conditional guard⟩ = .ok (t', a) :=
            hrun
          exact (outcome_addEdge ht hrun').setsUp
  | addDirectedEdge source target weight guard view =>
      obtain ⟨a, hrun, -⟩ := replying_eq_ok.mp h
      exact (outcome_addEdge ht hrun).setsUp
  | addOptionalEdge source target weight forwardGuard backwardGuard =>
      obtain ⟨a, hrun, -⟩ := replying_eq_ok.mp h
      exact (outcome_addOptionalEdge ht hrun).setsUp
  | addReifiedEdge l source target weight =>
      obtain ⟨a, hrun, -⟩ := replying_eq_ok.mp h
      exact (outcome_addReifiedEdge ht hrun).setsUp
  | addMaxDelay earlier later delay =>
      obtain ⟨a, hrun, -⟩ := replying_eq_ok.mp h
      exact (outcome_addPermanentEdge ht hrun).setsUp
  | addMinDelay earlier later delay =>
      obtain ⟨a, hrun, -⟩ := replying_eq_ok.mp h
      exact (outcome_addMinDelay ht hrun).setsUp
  | addBeforeEq a b =>
      obtain ⟨a, hrun, -⟩ := replying_eq_ok.mp h
      exact (outcome_addPermanentEdge ht hrun).setsUp
  | addStrictlyBefore a b =>
      obtain ⟨a, hrun, -⟩ := replying_eq_ok.mp h
      exact (outcome_addPermanentEdge ht hrun).setsUp
  | bindBound l f =>
      obtain ⟨a, hrun, -⟩ := replying_eq_ok.mp h
      exact (outcome_bindBound ht hrun).setsUp
  | newBoundLiteral f =>
      obtain ⟨a, hrun, -⟩ := replying_eq_ok.mp h
      exact (outcome_newBoundLiteral ht hrun).setsUp
  | _ => cases hr

/-- What a request extends it extends at the root. -/
theorem SetsUp.turns (h : SetsUp t t') (hts : Stack ts t) : Turns (ts, t) (ts, t') := by
  cases h with
  | refused same => rw [same]
  | declared added =>
      rw [added]
      exact turns_newVariable hts.settled
  | extended root settles =>
      have hlength : ts.length = 0 := by
        rw [← hts.depth]
        exact congrArg DecisionLevel.depth root
      rw [List.eq_nil_of_length_eq_zero hlength]
      exact (Turn.settled settles).run

/-- However the problem was set up, the theory is settled. -/
theorem SetsUp.settled (h : SetsUp t t') (ht : t.Settled) : t'.Settled := by
  cases h with
  | refused same => exact same ▸ ht
  | declared added => exact added ▸ (settles_newVariable ht).settled
  | extended root settles => exact settles.settled

/-- A conflict stays while the problem is set up. -/
theorem SetsUp.conflict_eq_none (h : SetsUp t t') (hnone : t'.conflict = none) :
    t.conflict = none := by
  cases h with
  | refused same => exact same ▸ hnone
  | declared added =>
      rw [added] at hnone
      exact hnone
  | extended root settles => exact settles.changes.conflict_eq_none hnone

/-- A request takes a theory through turns, unless it sets a literal. It
closes some of the last levels, or opens one; only `popTo` does both. -/
theorem turns_perform {r : Request} {reply : Reply} (hts : Stack ts t)
    (hr : ∀ l, r ≠ .assign l) (h : t.perform r = .ok (t', reply)) :
    ∃ ts', Turns (ts, t) (ts', t') ∧
      ((∀ level, r ≠ .popTo level) → ts' <:+ ts ∨ ts' = t :: ts) := by
  have ht := hts.settled
  have hkept : (∀ level, r ≠ .popTo level) → ts <:+ ts ∨ ts = t :: ts :=
    fun _ => .inl (List.suffix_refl ts)
  have hsetup : r.isSetup = true → ∃ ts', Turns (ts, t) (ts', t') ∧
      ((∀ level, r ≠ .popTo level) → ts' <:+ ts ∨ ts' = t :: ts) :=
    fun hsets => ⟨ts, (setsUp_perform ht hsets h).turns hts, hkept⟩
  cases r with
  | configure c =>
      cases h
      exact ⟨ts, turns_configure ht c, hkept⟩
  | assign l => exact absurd rfl (hr l)
  | propagate =>
      obtain ⟨t₁, hrun, heq⟩ := Checked.map_eq_ok.mp h
      cases heq
      exact ⟨ts, turns_propagate ht hrun, hkept⟩
  | pushCheckpoint =>
      obtain ⟨t₁, hrun, heq⟩ := Checked.map_eq_ok.mp h
      cases heq
      obtain ⟨-, rfl⟩ := pushCheckpoint_eq_ok.mp hrun
      exact ⟨_, Turn.opened.run, fun _ => .inr rfl⟩
  | backtrack level =>
      obtain ⟨a, hrun, -⟩ := replying_eq_ok.mp h
      obtain ⟨ts', hturns, hsuffix⟩ := turns_backtrack hts hrun
      exact ⟨ts', hturns, fun _ => .inl hsuffix⟩
  | popTo level =>
      obtain ⟨a, hrun, -⟩ := replying_eq_ok.mp h
      obtain ⟨ts', hturns⟩ := turns_popTo hts hrun
      exact ⟨ts', hturns, fun hpop => absurd rfl (hpop level)⟩
  | restoreLast =>
      obtain ⟨t₁, hrun, heq⟩ := Checked.map_eq_ok.mp h
      cases heq
      obtain ⟨t₀, rest, rfl, hreturns, -⟩ := hts.restoreLast hrun
      exact ⟨rest, (Turn.closed hreturns).run, fun _ => .inl (List.suffix_cons _ _)⟩
  | reset =>
      obtain ⟨t₁, hrun, heq⟩ := Checked.map_eq_ok.mp h
      cases heq
      exact ⟨_, turns_restore hts hrun, fun _ => .inl (List.drop_suffix _ _)⟩
  | _ => exact hsetup rfl

-- ============================================================= added edges

/-- The edges that a request adds to the problem if it is answered so. -/
def Request.added : Request → Reply → List Edge
  | .newTimepoint domain, .timepoint tp =>
    [⟨.origin, tp, domain.upper, .permanent⟩, ⟨tp, .origin, -domain.lower, .permanent⟩]
  | .addPermanentEdge s e w, .edge _ => [⟨s, e, w, .permanent⟩]
  | .addConditionalEdge s e w g, .edge _ => [⟨s, e, w, .conditional g⟩]
  | .addConstraint s e w none, .edge _ => [⟨s, e, w, .permanent⟩]
  | .addConstraint s e w (some g), .edge _ => [⟨s, e, w, .conditional g⟩]
  | .addDirectedEdge s e w g d, .edge _ => [⟨s, e, w, .directed g d⟩]
  | .addOptionalEdge s e w f b, .edges _ _ =>
    [⟨s, e, w, .directed f .forward⟩, ⟨s, e, w, .directed b .backward⟩]
  | .addReifiedEdge l s e w, .edge _ =>
    [⟨s, e, w, .conditional l⟩, ⟨e, s, -w - 1, .conditional l.negate⟩]
  | .addMaxDelay a b delay, .edge _ => [⟨a, b, delay, .permanent⟩]
  | .addMinDelay a b delay, .edge _ => [⟨b, a, -delay, .permanent⟩]
  | .addBeforeEq a b, .edge _ => [⟨b, a, 0, .permanent⟩]
  | .addStrictlyBefore a b, .edge _ => [⟨b, a, -1, .permanent⟩]
  | .bindBound l f, .done => [f.edge l, f.negation.edge l.negate]
  | .newBoundLiteral f, .literal l => [f.edge l, f.negation.edge l.negate]
  | _, _ => []

/-- A request that was refused adds nothing. -/
theorem Request.added_refused (r : Request) (refusal : Refusal) :
    r.added (.refused refusal) = [] := by
  cases r with
  | addConstraint s e w guard => cases guard <;> rfl
  | _ => rfl

/-- What a request was to add is there if it was accepted, and nothing was to
be added otherwise. -/
theorem Outcome.contains {α : Type} {result : Except Refusal α} {P : α → Prop}
    {accepted : α → Reply} {r : Request} {reply : Reply} (h : Outcome t t' result P)
    (hreply : Reply.ofRefusable accepted result = reply)
    (hP : ∀ a, P a → ∃ net, t'.network = (r.added (accepted a)).foldl Network.addEdge net) :
    ∀ e ∈ r.added reply, t'.network.Contains e := by
  intro e he
  rcases h with ⟨refusal, rfl, -⟩ | ⟨a, rfl, -, -, ha⟩
  · obtain rfl : reply = .refused refusal := hreply.symm
    rw [Request.added_refused] at he
    exact absurd he List.not_mem_nil
  · obtain rfl : reply = accepted a := hreply.symm
    obtain ⟨net, hnetwork⟩ := hP a ha
    rw [hnetwork]
    exact Network.contains_addEdges _ net e he

/-- What a request adds is part of the problem from then on. -/
theorem contains_perform {r : Request} {reply : Reply} (ht : t.Settled)
    (h : t.perform r = .ok (t', reply)) : ∀ e ∈ r.added reply, t'.network.Contains e := by
  cases r with
  -- a timepoint adds the two edges that enforce its domain
  | newTimepoint domain =>
      obtain ⟨a, hrun, hreply⟩ := replying_eq_ok.mp h
      apply (outcome_newTimepoint ht hrun).contains hreply
      intro tp htp
      obtain ⟨rfl, hnetwork⟩ := htp
      exact ⟨t.network.addTimepoint domain, hnetwork⟩
  | addPermanentEdge source target weight =>
      obtain ⟨a, hrun, hreply⟩ := replying_eq_ok.mp h
      exact (outcome_addPermanentEdge ht hrun).contains hreply fun _ hP => ⟨t.network, hP⟩
  | addConditionalEdge source target weight guard =>
      obtain ⟨a, hrun, hreply⟩ := replying_eq_ok.mp h
      exact (outcome_addEdge ht hrun).contains hreply fun _ hP => ⟨t.network, hP⟩
  | addConstraint source target weight guard =>
      obtain ⟨a, hrun, hreply⟩ := replying_eq_ok.mp h
      cases guard with
      | none =>
          exact (outcome_addPermanentEdge ht hrun).contains hreply fun _ hP => ⟨t.network, hP⟩
      | some guard =>
          have hrun' : t.addEdge ⟨source, target, weight, .conditional guard⟩ = .ok (t', a) :=
            hrun
          exact (outcome_addEdge ht hrun').contains hreply fun _ hP => ⟨t.network, hP⟩
  | addDirectedEdge source target weight guard view =>
      obtain ⟨a, hrun, hreply⟩ := replying_eq_ok.mp h
      exact (outcome_addEdge ht hrun).contains hreply fun _ hP => ⟨t.network, hP⟩
  | addOptionalEdge source target weight forwardGuard backwardGuard =>
      obtain ⟨a, hrun, hreply⟩ := replying_eq_ok.mp h
      exact (outcome_addOptionalEdge ht hrun).contains hreply fun _ hP => ⟨t.network, hP⟩
  | addReifiedEdge l source target weight =>
      obtain ⟨a, hrun, hreply⟩ := replying_eq_ok.mp h
      exact (outcome_addReifiedEdge ht hrun).contains hreply fun _ hP => ⟨t.network, hP⟩
  | addMaxDelay earlier later delay =>
      obtain ⟨a, hrun, hreply⟩ := replying_eq_ok.mp h
      exact (outcome_addPermanentEdge ht hrun).contains hreply fun _ hP => ⟨t.network, hP⟩
  | addMinDelay earlier later delay =>
      obtain ⟨a, hrun, hreply⟩ := replying_eq_ok.mp h
      exact (outcome_addMinDelay ht hrun).contains hreply fun _ hP => ⟨t.network, hP⟩
  | addBeforeEq a b =>
      obtain ⟨a, hrun, hreply⟩ := replying_eq_ok.mp h
      exact (outcome_addPermanentEdge ht hrun).contains hreply fun _ hP => ⟨t.network, hP⟩
  | addStrictlyBefore a b =>
      obtain ⟨a, hrun, hreply⟩ := replying_eq_ok.mp h
      exact (outcome_addPermanentEdge ht hrun).contains hreply fun _ hP => ⟨t.network, hP⟩
  -- a bound literal adds the edge of the fact and that of its negation
  | bindBound l f =>
      obtain ⟨a, hrun, hreply⟩ := replying_eq_ok.mp h
      exact (outcome_bindBound ht hrun).contains hreply fun _ hP => ⟨t.network, hP.1⟩
  | newBoundLiteral f =>
      obtain ⟨a, hrun, hreply⟩ := replying_eq_ok.mp h
      exact (outcome_newBoundLiteral ht hrun).contains hreply fun _ hP => ⟨t.network, hP.1⟩
  | _ => exact fun e he => absurd he List.not_mem_nil

-- ======================================================== setting literals

/-- A literal is set, with all that follows from it. -/
theorem advances_assign (ht : t.Settled) (hvar : t.hasVariable l.var = true)
    (hnone : t.conflict = none) {r : Except AssignError Unit}
    (h : t.assign l = .ok (t', r)) :
    t'.Settled ∧ Advances (t.setLiteral l) t' ∧ r = t'.verdict.mapError .conflict := by
  have hcoherent := ht.coherent.setLiteral hvar
  have hcovered := (sets_setLiteral hvar).covered ht.coherent hcoherent ht.covered
  unfold assign at h
  simp only [hvar, hnone, if_true, Checked.bind_eq_ok, Checked.pure_eq_ok, Prod.mk.injEq] at h
  obtain ⟨t₁, hrun, rfl, rfl⟩ := h
  obtain ⟨hsettled, hadvances⟩ :=
    settled_propagate hcoherent hcovered (ht.fired.setLiteral hvar) hrun
  exact ⟨hsettled, hadvances, rfl⟩

/-- Setting a literal, by its steps. -/
theorem steps_assign (ht : t.Settled) (hvar : t.hasVariable l.var = true)
    (hnone : t.conflict = none) {r : Except AssignError Unit}
    (h : t.assign l = .ok (t', r)) : t'.Settled ∧ Steps (t.setLiteral l) t' := by
  obtain ⟨hsettled, hadvances, -⟩ := advances_assign ht hvar hnone h
  exact ⟨hsettled, hadvances.steps⟩

/-- A literal is not set under a conflict, or without its variable. -/
theorem eq_of_assign {r : Except AssignError Unit} (h : t.assign l = .ok (t', r))
    (hrefused : ¬ (t.hasVariable l.var = true ∧ t.conflict = none)) : t' = t := by
  unfold assign at h
  split at h
  next hvar =>
    split at h
    next =>
      cases h
      rfl
    next hnone => exact absurd ⟨hvar, hnone⟩ hrefused
  next =>
    cases h
    rfl

/-- Setting a literal is recorded on the level on which it is done. -/
theorem extends_assign (ht : t.Settled) {r : Except AssignError Unit}
    (h : t.assign l = .ok (t', r)) : Extends t t' ∧ SameProblem t t' ∧ t'.Settled := by
  by_cases hset : t.hasVariable l.var = true ∧ t.conflict = none
  · obtain ⟨hsettled, hsteps⟩ := steps_assign ht hset.1 hset.2 h
    exact ⟨(extends_setLiteral t l).trans hsteps.extends,
      (sameProblem_setLiteral t l).trans hsteps.sameProblem, hsettled⟩
  · rw [eq_of_assign h hset]
    exact ⟨.refl t, .refl t, ht⟩

/-- Setting a variable that has no value is one assignment more. -/
theorem size_lt_assign (ht : t.Settled) (hvar : t.hasVariable l.var = true)
    (hfresh : t.value l = none) (hnone : t.conflict = none) {r : Except AssignError Unit}
    (h : t.assign l = .ok (t', r)) : t.assignments.size < t'.assignments.size := by
  obtain ⟨-, hsteps⟩ := steps_assign ht hvar hnone h
  obtain ⟨new, hnew⟩ := hsteps.extends.assignments
  rw [setLiteral_of_none hfresh] at hnew
  unfold EventQueue.size
  rw [hnew, Array.size_append]
  show t.assignments.events.size < (t.assignments.events.push l).size + new.size
  rw [Array.size_push]
  omega

/-- Whatever the request, there are saved states in order below the theory. -/
theorem Stack.perform {r : Request} {reply : Reply} (hts : Stack ts t)
    (h : t.perform r = .ok (t', reply)) : ∃ ts', Stack ts' t' := by
  by_cases hr : ∃ l, r = .assign l
  · obtain ⟨l, rfl⟩ := hr
    obtain ⟨a, hrun, -⟩ := replying_eq_ok.mp h
    obtain ⟨hextends, -, hsettled⟩ := extends_assign hts.settled hrun
    exact ⟨ts, hts.extends hextends hsettled⟩
  · obtain ⟨ts', hturns, -⟩ := turns_perform hts (fun l hl => hr ⟨l, hl⟩) h
    exact ⟨ts', hturns.stack hts⟩

/-- And so there are after a history of requests. -/
theorem Stack.performAll {rs : List Request} (hts : Stack ts t)
    (h : t.performAll rs = .ok t') : ∃ ts', Stack ts' t' := by
  induction rs generalizing ts t with
  | nil =>
      cases h
      exact ⟨ts, hts⟩
  | cons r rs ih =>
      unfold Theory.performAll at h
      rw [Checked.bind_eq_ok] at h
      obtain ⟨⟨t₁, reply⟩, hfirst, hrest⟩ := h
      obtain ⟨ts₁, hts₁⟩ := hts.perform hfirst
      exact ih hts₁ hrest

/-- Between requests a theory is settled, whatever was asked before. -/
theorem exists_stack_of_performAll {c : Config} {rs : List Request}
    (h : (initial c).performAll rs = .ok t) : ∃ ts, Stack ts t := by
  have hinitial : Stack [] (initial c) := .root (settled_initial c) (atRoot_initial c)
  exact hinitial.performAll h

/-- Every state that can arise is settled. -/
theorem settled_of_performAll {c : Config} {rs : List Request}
    (h : (initial c).performAll rs = .ok t) : t.Settled := by
  obtain ⟨ts, hts⟩ := exists_stack_of_performAll h
  exact hts.settled

-- ===================================================== verdict and bounds

variable {c : Config} {rs : List Request}

/-- The verdict is exact: the theory is consistent if and only if the
edges whose guards are true have a schedule, which means that neither
view has a negative cycle and no upper bound is below a lower bound. -/
theorem isConsistent_iff_not_excludes (h : (initial c).performAll rs = .ok t) :
    t.isConsistent = true ↔ ¬ t.network.Excludes t.trueLiterals := by
  have ht := settled_of_performAll h
  unfold isConsistent
  rw [Option.isNone_iff_eq_none]
  constructor
  · intro hnone hexcludes
    refine ht.coherent.graph.consistent (Network.Inconsistent.mono (fun id hid => ?_) hexcludes)
    exact ht.enabledBy_active hnone hid
  · intro hconsistent
    cases hconflict : t.conflict with
    | none => rfl
    | some conflict =>
        obtain ⟨hvalid, htrue⟩ := ht.coherent.conflict conflict hconflict
        exact absurd (hvalid.excludes.mono htrue) hconsistent

/-- An edge asks for more than the domain of its source allows, and its
guard is set at a level of its own. -/
theorem isConsistent_iff_not_excludes_tooLate :
    ∃ t, (initial ⟨.off, true⟩).performAll
        [.newTimepoint ⟨0, 10⟩, .newVariable, .addConditionalEdge ⟨1⟩ .origin (-20) ⟨⟨0⟩, true⟩,
          .pushCheckpoint, .assign ⟨⟨0⟩, true⟩] = .ok t ∧
      t.isConsistent = false ∧ (t.isConsistent = true ↔ ¬ t.network.Excludes t.trueLiterals) := by
  have hrun : ((initial ⟨.off, true⟩).performAll
      [.newTimepoint ⟨0, 10⟩, .newVariable, .addConditionalEdge ⟨1⟩ .origin (-20) ⟨⟨0⟩, true⟩,
        .pushCheckpoint, .assign ⟨⟨0⟩, true⟩]).answers (fun t => t.isConsistent == false)
      = true := by decide +kernel
  obtain ⟨t, ht, hverdict⟩ := Checked.exists_of_answers hrun
  exact ⟨t, ht, beq_iff_eq.mp hverdict, isConsistent_iff_not_excludes ht⟩

/-- Bounds are exact distances along the edges in force, from the origin
in the forward view and to it in the backward view. While the theory is
consistent, the edges in force are those whose guards are true. -/
theorem bounds_isLeast (h : (initial c).performAll rs = .ok t) :
    (∀ x, t.network.hasTimepoint x = true →
      ∃ lower upper, t.lower x = .ok lower ∧ t.upper x = .ok upper ∧
        IsLeast {w | t.network.Walk (t.network.inView .forward {id | t.isActive id = true})
          .origin x w} upper ∧
        IsLeast {w | t.network.Walk (t.network.inView .backward {id | t.isActive id = true})
          x .origin w} (-lower)) ∧
    (t.isConsistent = true → ∀ id, t.isActive id = true ↔
      id ∈ t.network.enabledBy t.trueLiterals) := by
  have ht := settled_of_performAll h
  constructor
  · intro x hx
    have hlower : t.lower x = .ok (t.graph.lower x) := by
      unfold Theory.lower requireTimepoint
      rw [Checked.require_of hx]
      rfl
    have hupper : t.upper x = .ok (t.graph.upper x) := by
      unfold Theory.upper requireTimepoint
      rw [Checked.require_of hx]
      rfl
    refine ⟨_, _, hlower, hupper, ?_, ?_⟩
    · exact ht.coherent.graph.isLeast_value (d := .forward) hx
    · rw [show -t.graph.lower x = t.graph.value .backward x from Int.neg_neg _]
      exact ht.coherent.graph.isLeast_value (d := .backward) hx
  · intro hconsistent id
    exact ht.isActive_iff (Option.isNone_iff_eq_none.mp hconsistent) id

/-- Two edges in a row, of which the second is in force while its guard
is true. -/
theorem bounds_isLeast_chain :
    ∃ t, (initial .standard).performAll
        [.newTimepoint ⟨0, 10⟩, .newTimepoint ⟨2, 9⟩, .newVariable,
          .addPermanentEdge .origin ⟨1⟩ 3, .addConditionalEdge ⟨1⟩ ⟨2⟩ 4 ⟨⟨0⟩, true⟩,
          .pushCheckpoint, .assign ⟨⟨0⟩, true⟩] = .ok t ∧
      t.upper ⟨2⟩ = .ok 7 ∧ t.isConsistent = true ∧
      (∃ lower upper, t.lower ⟨2⟩ = .ok lower ∧ t.upper ⟨2⟩ = .ok upper ∧
        IsLeast {w | t.network.Walk (t.network.inView .forward {id | t.isActive id = true})
          .origin ⟨2⟩ w} upper ∧
        IsLeast {w | t.network.Walk (t.network.inView .backward {id | t.isActive id = true})
          ⟨2⟩ .origin w} (-lower)) ∧
      ∀ id, t.isActive id = true ↔ id ∈ t.network.enabledBy t.trueLiterals := by
  have hrun : ((initial .standard).performAll
      [.newTimepoint ⟨0, 10⟩, .newTimepoint ⟨2, 9⟩, .newVariable,
        .addPermanentEdge .origin ⟨1⟩ 3, .addConditionalEdge ⟨1⟩ ⟨2⟩ 4 ⟨⟨0⟩, true⟩,
        .pushCheckpoint, .assign ⟨⟨0⟩, true⟩]).answers (fun t =>
          decide (t.upper ⟨2⟩ = .ok 7) && t.isConsistent && t.network.hasTimepoint ⟨2⟩)
      = true := by decide +kernel
  obtain ⟨t, ht, hstate⟩ := Checked.exists_of_answers hrun
  simp only [Bool.and_eq_true, decide_eq_true_eq] at hstate
  obtain ⟨⟨hupper, hconsistent⟩, htimepoint⟩ := hstate
  obtain ⟨hbounds, hactive⟩ := bounds_isLeast ht
  exact ⟨t, ht, hupper, hconsistent, hbounds ⟨2⟩ htimepoint, hactive hconsistent⟩

end Theory

end TemporalNetwork
