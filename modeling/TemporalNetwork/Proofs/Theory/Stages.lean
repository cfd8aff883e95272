/-
Setting up the problem in stages.

A request that sets up the problem has several parts: timepoints and
edges that the network takes in, what is bound to a literal, what follows
for the bounds. Here every part is given its own checks. They are made in
the state that the parts before it left behind, and a part that is refused
leaves that state as it is, so that a request might be refused half-way:
with the timepoint and not the edges of its domain, with one edge of an
equivalence and not the other. The numbers that are derived on the way
are formed with 32 bits.

No request is refused half-way. The first check of each covers whatever
its parts check later on, in states in which there is only more to be
found: `performStaged_eq`. A request that is refused was refused before it
did anything.
-/
import TemporalNetwork.Proofs.Theory.Answers

namespace TemporalNetwork

/-- A part of a request. It leaves a state behind, with its result or a
refusal. -/
structure Staged (α : Type) where
  run : Theory → Checked (Theory × Except Refusal α)

namespace Staged

variable {α β γ : Type}

/-- What is done after a part, with its result. -/
def next (f : α → Staged β) : Theory × Except Refusal α → Checked (Theory × Except Refusal β)
  | (t, .ok a) => (f a).run t
  | (t, .error refusal) => .ok (t, .error refusal)

/-- After a refusal nothing more is done, and nothing is taken back. -/
instance : Monad Staged where
  pure a := ⟨fun t => .ok (t, .ok a)⟩
  bind x f := ⟨fun t => x.run t >>= next f⟩

/-- A check of the present state. -/
def check (validation : Theory → Except Refusal Unit) : Staged Unit :=
  ⟨fun t => .ok (t, validation t)⟩

/-- Forms a number with 32 bits. -/
def form (x : Int) : Staged Int := ⟨fun t => (int32 x).map fun n => (t, .ok n)⟩

/-- A change that cannot be refused. -/
def record (change : Theory → Theory × α) : Staged α :=
  ⟨fun t => .ok ((change t).1, .ok (change t).2)⟩

/-- Work that cannot be refused. -/
def work (task : Theory → Checked (Theory × α)) : Staged α :=
  ⟨fun t => (task t).map fun (t, a) => (t, .ok a)⟩

-- =================================================================== parts

/-- The network takes in a timepoint. -/
def storeTimepoint (dom : Domain) : Staged Timepoint := do
  check fun _ => Network.checkDomain dom
  record fun t => ({ t with network := t.network.addTimepoint dom }, t.network.domains.nextKey)

/-- The network takes in an edge. -/
def storeEdge (e : Edge) : Staged EdgeId := do
  check fun t => t.network.checkEdge e.source e.target e.weight
  record fun t => ({ t with network := t.network.addEdge e }, t.network.edges.nextKey)

/-- The network takes in an edge, and the graph makes room for it. -/
def recordEdge (e : Edge) : Staged EdgeId := do
  let id ← storeEdge e
  record fun t => ({ t with graph := t.graph.addEdge }, id)

/-- Has an edge that was recorded put in force as soon as its guard is
true. -/
def enforce (e : Edge) (id : EdgeId) (t : Theory) : Checked (Theory × EdgeId) := do
  let t ← match e.guard? with
    | none => pure { t with pending := t.pending ++ [.edge id] }
    | some guard => do
      let t := { t with bindings := t.bindings.addEdge guard id }
      match t.value guard with
      | some true => pure { t with pending := t.pending ++ [.edge id] }
      | some false => pure t
      | none => if t.config.propagation.usesBounds then t.checkRoom id else pure t
  let t ← t.propagate
  return (t, id)

/-- Records the edges that a literal and its negation guard. -/
def recordEquivalence (l : Literal) (edge negated : Edge) : Staged EdgeId := do
  let id ← recordEdge edge
  let negatedId ← recordEdge negated
  record fun t =>
    ({ t with bindings := (t.bindings.addEdge l id).addEdge l.negate negatedId }, id)

/-- The negation of a fact. -/
def formNegation (f : BoundFact) : Staged BoundFact := do
  let _ ← form f.negation.value
  return f.negation

/-- The edge that enforces a fact. -/
def formEdge (l : Literal) (f : BoundFact) : Staged Edge := do
  let _ ← form f.threshold
  return f.edge l

/-- Lets a literal stand for a fact. -/
def watch (l : Literal) (f : BoundFact) : Staged Unit := do
  let _ ← form f.threshold
  record fun t => ({ t with bindings := t.bindings.addBound l f }, ())

-- ================================================================ requests

def newTimepoint (dom : Domain) : Staged Timepoint := do
  check Theory.checkRoot
  let tp ← storeTimepoint dom
  let _ ← storeEdge ⟨.origin, tp, dom.upper, .permanent⟩
  let weight ← form (-dom.lower)
  let _ ← storeEdge ⟨tp, .origin, weight, .permanent⟩
  work fun t => do
    let graph ← t.graph.addNode tp dom
    return ({ t with graph }, tp)

def addPermanentEdge (source target : Timepoint) (weight : Int) : Staged EdgeId := do
  check Theory.checkRoot
  let id ← recordEdge ⟨source, target, weight, .permanent⟩
  work (enforce ⟨source, target, weight, .permanent⟩ id)

def addEdge (e : Edge) : Staged EdgeId :=
  match e.guard? with
  | none => addPermanentEdge e.source e.target e.weight
  | some guard => do
    check Theory.checkRoot
    check (Theory.checkLiteral · guard)
    let id ← recordEdge e
    work (enforce e id)

def addConstraint (source target : Timepoint) (weight : Int) (guard : Option Literal) :
    Staged EdgeId :=
  match guard with
  | some guard => addEdge ⟨source, target, weight, .conditional guard⟩
  | none => addPermanentEdge source target weight

/-- Each of the two edges is added as it would be alone. -/
def addOptionalEdge (source target : Timepoint) (weight : Int)
    (forwardGuard backwardGuard : Literal) : Staged (EdgeId × EdgeId) := do
  check Theory.checkRoot
  check (Theory.checkLiteral · forwardGuard)
  check (Theory.checkLiteral · backwardGuard)
  check fun t => t.network.checkEdge source target weight
  let forward ← addEdge ⟨source, target, weight, .directed forwardGuard .forward⟩
  let backward ← addEdge ⟨source, target, weight, .directed backwardGuard .backward⟩
  return (forward, backward)

def addMinDelay (earlier later : Timepoint) (delay : Int) : Staged EdgeId := do
  let weight ← form (-delay)
  addPermanentEdge later earlier weight

/-- An edge and its opposite, each checked where it is formed. -/
def addReifiedEdge (l : Literal) (source target : Timepoint) (weight : Int) :
    Staged EdgeId := do
  check Theory.checkRoot
  check (Theory.checkLiteral · l)
  check fun t => t.network.checkEdge source target weight
  let opposite ← form (-weight)
  let negated ← form (opposite - 1)
  check fun _ => Network.checkMagnitude negated
  let id ← recordEquivalence l ⟨source, target, weight, .conditional l⟩
    ⟨target, source, negated, .conditional l.negate⟩
  work fun t => do
    let t ← t.commitEquivalence l t.config.propagation.usesBounds
    return (t, id)

/-- A fact and its negation, each checked where it is formed. -/
def bindBound (l : Literal) (f : BoundFact) : Staged Unit := do
  check Theory.checkRoot
  check (Theory.checkLiteral · l)
  check fun t => t.network.checkTimepoint f.timepoint
  check fun _ => Network.checkMagnitude f.value
  let negation ← formNegation f
  check fun _ => Network.checkMagnitude negation.value
  let edge ← formEdge l f
  let negated ← formEdge l.negate negation
  let _ ← recordEquivalence l edge negated
  watch l f
  watch l.negate negation
  work fun t => do
    let t ← t.commitEquivalence l true
    return (t, ())

/-- The literal is there before it is bound, and is bound as any other. -/
def newBoundLiteral (f : BoundFact) : Staged Literal := do
  check Theory.checkRoot
  check fun t => t.network.checkTimepoint f.timepoint
  check fun _ => Network.checkMagnitude f.value
  let negation ← formNegation f
  check fun _ => Network.checkMagnitude negation.value
  let l ← record Theory.newLiteral
  bindBound l f
  return l

-- ================================================================= running

section
variable {t : Theory} {f : α → Staged β} {rest : Unit → Staged β} {others : Except Refusal Unit}
  {validation : Theory → Except Refusal Unit} {commit : Checked (Theory × β)} {e : Edge}

theorem run_bind (x : Staged α) (t : Theory) : (x >>= f).run t = x.run t >>= next f := rfl

/-- A part that is itself made of parts. -/
theorem run_bind_bind (x : Staged γ) (g : γ → Staged α) (t : Theory) :
    ((x >>= g) >>= f).run t = (x >>= fun c => g c >>= f).run t := by
  rw [run_bind, run_bind, run_bind]
  cases x.run t with
  | error fault => rfl
  | ok p =>
      obtain ⟨u, result⟩ := p
      cases result <;> rfl

/-- A check either lets the rest go on, or refuses and leaves the theory as it
is. -/
theorem run_check_bind : (check validation >>= rest).run t = match validation t with
    | .ok _ => (rest ()).run t
    | .error refusal => .ok (t, .error refusal) := by
  show next rest (t, validation t) = _
  cases validation t <;> rfl

/-- A check that is passed. -/
theorem run_check_bind_of (h : validation t = .ok ()) :
    (check validation >>= rest).run t = (rest ()).run t := by
  rw [run_check_bind, h]

/-- A number that has 32 bits. -/
theorem run_form_bind_of {x : Int} {g : Int → Staged β} (h : FitsInt32 x) :
    (form x >>= g).run t = (g x).run t := by
  show (int32 x).map _ >>= _ = _
  rw [int32_of h]
  rfl

theorem run_record_bind (change : Theory → Theory × α) :
    (record change >>= f).run t = (f (change t).2).run (change t).1 := rfl

/-- What is validated last before the request is carried out. -/
theorem run_check_bind_eq_attempt
    (h : validation t = .ok () → (rest ()).run t = commit.map fun (t, b) => (t, .ok b)) :
    (check validation >>= rest).run t = t.attempt (validation t) commit := by
  rw [run_check_bind]
  unfold Theory.attempt
  cases hv : validation t with
  | error refusal => rfl
  | ok u => exact h hv

/-- What is validated before something else is. -/
theorem run_check_bind_attempt
    (h : validation t = .ok () → (rest ()).run t = t.attempt others commit) :
    (check validation >>= rest).run t = t.attempt (validation t >>= fun _ => others) commit := by
  rw [run_check_bind]
  cases hv : validation t with
  | error refusal => rfl
  | ok u => exact h hv

/-- An edge whose ends are there, with a weight in range. -/
theorem run_storeEdge_bind_of {g : EdgeId → Staged β}
    (h : t.network.checkEdge e.source e.target e.weight = .ok ()) :
    (storeEdge e >>= g).run t =
      (g t.network.edges.nextKey).run { t with network := t.network.addEdge e } := by
  unfold storeEdge
  rw [run_bind_bind, run_check_bind_of h, run_record_bind]

theorem run_recordEdge_bind_of {g : EdgeId → Staged β}
    (h : t.network.checkEdge e.source e.target e.weight = .ok ()) :
    (recordEdge e >>= g).run t = (g (t.recordEdge e).2).run (t.recordEdge e).1 := by
  unfold recordEdge
  rw [run_bind_bind, run_storeEdge_bind_of h, run_record_bind]
  rfl

/-- An edge is validated as it is recorded. -/
theorem run_recordEdge_bind_eq_attempt {g : EdgeId → Staged β}
    (h : t.network.checkEdge e.source e.target e.weight = .ok () →
      (g (t.recordEdge e).2).run (t.recordEdge e).1 = commit.map fun (t, b) => (t, .ok b)) :
    (recordEdge e >>= g).run t =
      t.attempt (t.network.checkEdge e.source e.target e.weight) commit := by
  cases hv : t.network.checkEdge e.source e.target e.weight with
  | error refusal =>
      unfold recordEdge storeEdge
      rw [run_bind_bind, run_bind_bind, run_check_bind, hv]
      rfl
  | ok u =>
      rw [run_recordEdge_bind_of hv]
      exact h hv

end

end Staged

-- ============================================================ same requests

namespace Theory

open Staged (check form record work)

variable {t t' : Theory} {l : Literal} {e : Edge} {f : BoundFact} {source target : Timepoint}
  {weight : Int} {guard : Literal}

theorem commitEdge_eq_enforce (t : Theory) (e : Edge) :
    t.commitEdge e = Staged.enforce e (t.recordEdge e).2 (t.recordEdge e).1 := rfl

/-- In stages, a permanent edge is added as it is otherwise. -/
theorem run_addPermanentEdge (source target : Timepoint) (weight : Int) (t : Theory) :
    (Staged.addPermanentEdge source target weight).run t =
      t.addPermanentEdge source target weight := by
  apply Staged.run_check_bind_attempt
  intro _
  apply Staged.run_recordEdge_bind_eq_attempt
  intro _
  rw [commitEdge_eq_enforce]
  rfl

/-- In stages, an edge is added as it is otherwise. -/
theorem run_addEdge (e : Edge) (t : Theory) : (Staged.addEdge e).run t = t.addEdge e := by
  unfold Staged.addEdge addEdge
  cases e.guard? with
  | none => exact run_addPermanentEdge e.source e.target e.weight t
  | some guard =>
      apply Staged.run_check_bind_attempt
      intro _
      apply Staged.run_check_bind_attempt
      intro _
      apply Staged.run_recordEdge_bind_eq_attempt
      intro _
      rw [commitEdge_eq_enforce]
      rfl

/-- An edge that passes all checks is committed. -/
theorem addEdge_of_checks (hguard : e.guard? = some guard) (hroot : t.level = .root)
    (hvar : t.hasVariable guard.var = true)
    (hedge : t.network.checkEdge e.source e.target e.weight = .ok ()) :
    t.addEdge e = (t.commitEdge e).map fun (t, id) => (t, .ok id) := by
  unfold addEdge
  rw [hguard]
  show t.attempt _ _ = _
  rw [checkRoot_eq_ok.mpr hroot, checkLiteral_eq_ok.mpr hvar, hedge]
  rfl

theorem SameLevels.level (h : SameLevels t t') : t'.level = t.level := by
  show (⟨t'.log.marks.length⟩ : DecisionLevel) = ⟨t.log.marks.length⟩
  rw [h.log]

/-- What the second edge is checked against has only grown with the
first. -/
theorem Settled.run_addOptionalEdge (ht : t.Settled) (source target : Timepoint) (weight : Int)
    (forwardGuard backwardGuard : Literal) :
    (Staged.addOptionalEdge source target weight forwardGuard backwardGuard).run t =
      t.addOptionalEdge source target weight forwardGuard backwardGuard := by
  apply Staged.run_check_bind_attempt
  intro hroot
  apply Staged.run_check_bind_attempt
  intro hforward
  apply Staged.run_check_bind_attempt
  intro hbackward
  apply Staged.run_check_bind_eq_attempt
  intro hedge
  let e₁ : Edge := ⟨source, target, weight, .directed forwardGuard .forward⟩
  let e₂ : Edge := ⟨source, target, weight, .directed backwardGuard .backward⟩
  have he₁ : Recordable t e₁ := recordable_guarded rfl hforward hedge
  have he₂ : Recordable t e₂ := recordable_guarded rfl hbackward hedge
  rw [checkRoot_eq_ok] at hroot
  have hfirst : t.addEdge e₁ = (t.commitEdge e₁).map fun (t, id) => (t, .ok id) :=
    addEdge_of_checks rfl hroot (he₁.guard _ rfl) hedge
  show (Staged.addEdge e₁ >>= _).run t = (t.commitEdge e₁ >>= _).map _
  rw [Staged.run_bind, run_addEdge, hfirst]
  cases hcommit : t.commitEdge e₁ with
  | error fault => rfl
  | ok p =>
      obtain ⟨t₁, forward⟩ := p
      have hchanges : Changes t t₁ := (settles_commitEdge ht he₁ hcommit).1.changes
      have he₂' : Recordable t₁ e₂ := he₂.changes hchanges
      have hsecond : t₁.addEdge e₂ = (t₁.commitEdge e₂).map fun (t, id) => (t, .ok id) :=
        addEdge_of_checks rfl (hchanges.sameLevels.level.trans hroot) (he₂'.guard _ rfl)
          (checkEdge_eq_ok.mpr ⟨he₂'.source, he₂'.target, he₂'.weight⟩)
      show (Staged.addEdge e₂ >>= _).run t₁ = (t₁.commitEdge e₂ >>= _).map _
      rw [Staged.run_bind, run_addEdge, hsecond]
      cases t₁.commitEdge e₂ <;> rfl

-- =============================================================== timepoints

/-- The edges of a domain join the new timepoint and the origin. -/
theorem Settled.run_newTimepoint (ht : t.Settled) (dom : Domain) :
    (Staged.newTimepoint dom).run t = t.newTimepoint dom := by
  apply Staged.run_check_bind_attempt
  intro _
  unfold Staged.storeTimepoint
  rw [Staged.run_bind_bind]
  apply Staged.run_check_bind_eq_attempt
  intro hdomain
  obtain ⟨hlower, hupper, -⟩ := checkDomain_eq_ok.mp hdomain
  let tp : Timepoint := t.network.domains.nextKey
  let upperEdge : Edge := ⟨.origin, tp, dom.upper, .permanent⟩
  let lowerEdge : Edge := ⟨tp, .origin, -dom.lower, .permanent⟩
  let t₁ : Theory := { t with network := t.network.addTimepoint dom }
  let t₂ : Theory := { t₁ with network := t₁.network.addEdge upperEdge }
  have horigin : t₁.network.hasTimepoint .origin = true :=
    ((Network.grows_addTimepoint t.network dom).timepoint _ ht.coherent.network.origin).1
  have hnew : t₁.network.hasTimepoint tp = true := by
    apply Network.hasTimepoint_iff.mpr
    rw [Network.numTimepoints_addTimepoint]
    show Handle.index t.network.domains.nextKey < _
    rw [HandleVector.index_nextKey]
    exact Nat.lt_succ_self _
  have hupperEdge : t₁.network.checkEdge .origin tp dom.upper = .ok () :=
    checkEdge_eq_ok.mpr ⟨horigin, hnew, hupper⟩
  have hnegated : -maxMagnitude ≤ -dom.lower ∧ -dom.lower ≤ maxMagnitude := by omega
  have hlowerEdge : t₂.network.checkEdge tp .origin (-dom.lower) = .ok () := by
    apply checkEdge_eq_ok.mpr
    rw [Network.hasTimepoint_addEdge, Network.hasTimepoint_addEdge]
    exact ⟨hnew, horigin, hnegated⟩
  rw [Staged.run_record_bind]
  show (Staged.storeEdge upperEdge >>= _).run t₁ = _
  rw [Staged.run_storeEdge_bind_of hupperEdge]
  show (form (-dom.lower) >>= _).run t₂ = _
  rw [Staged.run_form_bind_of (fitsInt32_of_limits (by omega) (by omega))]
  show (Staged.storeEdge lowerEdge >>= _).run t₂ = _
  rw [Staged.run_storeEdge_bind_of hlowerEdge]
  show Except.map _ (t.graph.addNode tp dom >>= _) = Except.map _ (t.graph.addNode tp dom >>= _)
  cases t.graph.addNode tp dom <;> rfl

-- ============================================================ equivalences

/-- Both edges of an equivalence are recorded. -/
theorem run_recordEquivalence_bind {α : Type} {g : EdgeId → Staged α} {edge negated : Edge}
    (hedge : t.network.checkEdge edge.source edge.target edge.weight = .ok ())
    (hnegated : t.network.checkEdge negated.source negated.target negated.weight = .ok ()) :
    (Staged.recordEquivalence l edge negated >>= g).run t =
      (g (t.recordEquivalence l edge negated).2).run (t.recordEquivalence l edge negated).1 := by
  have hsecond : (t.recordEdge edge).1.network.checkEdge negated.source negated.target
      negated.weight = .ok () := by
    apply checkEdge_eq_ok.mpr
    show (t.network.addEdge edge).hasTimepoint _ = true ∧
      (t.network.addEdge edge).hasTimepoint _ = true ∧ _
    rw [Network.hasTimepoint_addEdge, Network.hasTimepoint_addEdge]
    exact checkEdge_eq_ok.mp hnegated
  unfold Staged.recordEquivalence
  rw [Staged.run_bind_bind, Staged.run_recordEdge_bind_of hedge, Staged.run_bind_bind,
    Staged.run_recordEdge_bind_of hsecond, Staged.run_record_bind]
  rfl

/-- The weight of the opposite edge is formed from one in range. -/
theorem run_addReifiedEdge (l : Literal) (source target : Timepoint) (weight : Int) (t : Theory) :
    (Staged.addReifiedEdge l source target weight).run t =
      t.addReifiedEdge l source target weight := by
  apply Staged.run_check_bind_attempt
  intro _
  apply Staged.run_check_bind_attempt
  intro _
  apply Staged.run_check_bind_attempt
  intro hedge
  obtain ⟨hsource, htarget, hweight⟩ := checkEdge_eq_ok.mp hedge
  have hmax : maxMagnitude = 268435455 := rfl
  rw [Staged.run_form_bind_of (fitsInt32_of_limits (by omega) (by omega)),
    Staged.run_form_bind_of (fitsInt32_of_limits (by omega) (by omega))]
  apply Staged.run_check_bind_eq_attempt
  intro hnegated
  have hopposite : t.network.checkEdge target source (-weight - 1) = .ok () :=
    checkEdge_eq_ok.mpr ⟨htarget, hsource, checkMagnitude_eq_ok.mp hnegated⟩
  rw [run_recordEquivalence_bind hedge hopposite]
  rfl

/-- The edge of a fact that is in range, with its ends. -/
theorem checkEdge_boundEdge (ht : t.Coherent) (hf : t.network.hasTimepoint f.timepoint = true)
    (hvalue : -maxMagnitude ≤ f.value ∧ f.value ≤ maxMagnitude) :
    t.network.checkEdge (f.edge l).source (f.edge l).target (f.edge l).weight = .ok () := by
  have horigin := ht.network.origin
  apply checkEdge_eq_ok.mpr
  cases f with
  | leq x k => exact ⟨horigin, hf, hvalue⟩
  | geq x k =>
      show _ ∧ _ ∧ -maxMagnitude ≤ -k ∧ -k ≤ maxMagnitude
      simp only [BoundFact.value] at hvalue
      exact ⟨hf, horigin, by omega⟩

/-- What is formed of a fact in range has 32 bits. -/
theorem fitsInt32_fact (hvalue : -maxMagnitude ≤ f.value ∧ f.value ≤ maxMagnitude) :
    FitsInt32 f.threshold ∧ FitsInt32 f.negation.value := by
  have hmax : maxMagnitude = 268435455 := rfl
  cases f with
  | leq x k =>
      have hk : -maxMagnitude ≤ k ∧ k ≤ maxMagnitude := hvalue
      show FitsInt32 k ∧ FitsInt32 (k + 1)
      exact ⟨fitsInt32_of_limits (by omega) (by omega), fitsInt32_of_limits (by omega) (by omega)⟩
  | geq x k =>
      have hk : -maxMagnitude ≤ k ∧ k ≤ maxMagnitude := hvalue
      show FitsInt32 (-k) ∧ FitsInt32 (k - 1)
      exact ⟨fitsInt32_of_limits (by omega) (by omega), fitsInt32_of_limits (by omega) (by omega)⟩

section
variable {α : Type} (hvalue : -maxMagnitude ≤ f.value ∧ f.value ≤ maxMagnitude)
include hvalue

theorem run_formNegation_bind {g : BoundFact → Staged α} :
    (Staged.formNegation f >>= g).run t = (g f.negation).run t := by
  unfold Staged.formNegation
  rw [Staged.run_bind_bind, Staged.run_form_bind_of (fitsInt32_fact hvalue).2]
  rfl

theorem run_formEdge_bind {g : Edge → Staged α} :
    (Staged.formEdge l f >>= g).run t = (g (f.edge l)).run t := by
  unfold Staged.formEdge
  rw [Staged.run_bind_bind, Staged.run_form_bind_of (fitsInt32_fact hvalue).1]
  rfl

theorem run_watch_bind {g : Unit → Staged α} :
    (Staged.watch l f >>= g).run t =
      (g ()).run { t with bindings := t.bindings.addBound l f } := by
  unfold Staged.watch
  rw [Staged.run_bind_bind, Staged.run_form_bind_of (fitsInt32_fact hvalue).1]
  rfl

end

/-- The bound of the negated fact is formed from one in range. -/
theorem Settled.run_bindBound (ht : t.Settled) (l : Literal) (f : BoundFact) :
    (Staged.bindBound l f).run t = t.bindBound l f := by
  apply Staged.run_check_bind_attempt
  intro _
  apply Staged.run_check_bind_attempt
  intro _
  apply Staged.run_check_bind_attempt
  intro hf
  apply Staged.run_check_bind_attempt
  intro hvalue
  rw [checkTimepoint_eq_ok] at hf
  rw [checkMagnitude_eq_ok] at hvalue
  rw [run_formNegation_bind hvalue]
  apply Staged.run_check_bind_eq_attempt
  intro hnegated
  rw [checkMagnitude_eq_ok] at hnegated
  have hf' : t.network.hasTimepoint f.negation.timepoint = true := by
    cases f <;> exact hf
  rw [run_formEdge_bind hvalue, run_formEdge_bind hnegated,
    run_recordEquivalence_bind (checkEdge_boundEdge ht.coherent hf hvalue)
      (checkEdge_boundEdge ht.coherent hf' hnegated),
    run_watch_bind hvalue, run_watch_bind hnegated]
  rfl

/-- The literal that is bound was added just before. -/
theorem Settled.run_newBoundLiteral (ht : t.Settled) (f : BoundFact) :
    (Staged.newBoundLiteral f).run t = t.newBoundLiteral f := by
  apply Staged.run_check_bind_attempt
  intro hroot
  apply Staged.run_check_bind_attempt
  intro hf
  apply Staged.run_check_bind_attempt
  intro hvalue
  rw [run_formNegation_bind (checkMagnitude_eq_ok.mp hvalue)]
  apply Staged.run_check_bind_eq_attempt
  intro hnegated
  let t₁ : Theory := t.newVariable.1
  let l₁ : Literal := ⟨t.newVariable.2, true⟩
  have hbind : t₁.bindBound l₁ f = (t₁.commitBound l₁ f).map fun u => (u, .ok ()) := by
    have hroot' : t₁.checkRoot = .ok () := hroot
    have hvar : t₁.checkLiteral l₁ = .ok () := checkLiteral_eq_ok.mpr (hasVariable_newVariable t)
    have hfact : t₁.checkFact f = .ok () := checkFact_eq_ok.mpr
      ⟨checkTimepoint_eq_ok.mp hf, checkMagnitude_eq_ok.mp hvalue, checkMagnitude_eq_ok.mp hnegated⟩
    unfold bindBound
    rw [hroot', hvar, hfact]
    show Except.map _ (t₁.commitBound l₁ f >>= _) = _
    cases t₁.commitBound l₁ f <;> rfl
  rw [Staged.run_record_bind]
  show (Staged.bindBound l₁ f >>= _).run t₁ = (t₁.commitBound l₁ f >>= _).map _
  rw [Staged.run_bind, (settles_newVariable ht).settled.run_bindBound, hbind]
  cases t₁.commitBound l₁ f <;> rfl

-- ================================================================ requests

/-- Carries out a request in stages, if it is one that sets up the
problem. -/
def performStaged (t : Theory) : Request → Checked (Theory × Reply)
  | .newTimepoint domain => replying ((Staged.newTimepoint domain).run t) (.ofRefusable .timepoint)
  | .addPermanentEdge s e w =>
    replying ((Staged.addPermanentEdge s e w).run t) (.ofRefusable .edge)
  | .addConditionalEdge s e w g =>
    replying ((Staged.addEdge ⟨s, e, w, .conditional g⟩).run t) (.ofRefusable .edge)
  | .addConstraint s e w g => replying ((Staged.addConstraint s e w g).run t) (.ofRefusable .edge)
  | .addDirectedEdge s e w g d =>
    replying ((Staged.addEdge ⟨s, e, w, .directed g d⟩).run t) (.ofRefusable .edge)
  | .addOptionalEdge s e w f b =>
    replying ((Staged.addOptionalEdge s e w f b).run t)
      (.ofRefusable fun ids => .edges ids.1 ids.2)
  | .addReifiedEdge l s e w =>
    replying ((Staged.addReifiedEdge l s e w).run t) (.ofRefusable .edge)
  | .addMaxDelay a b d => replying ((Staged.addPermanentEdge a b d).run t) (.ofRefusable .edge)
  | .addMinDelay a b d => replying ((Staged.addMinDelay a b d).run t) (.ofRefusable .edge)
  | .addBeforeEq a b => replying ((Staged.addPermanentEdge b a 0).run t) (.ofRefusable .edge)
  | .addStrictlyBefore a b =>
    replying ((Staged.addPermanentEdge b a (-1)).run t) (.ofRefusable .edge)
  | .bindBound l f => replying ((Staged.bindBound l f).run t) (.ofRefusable fun _ => .done)
  | .newBoundLiteral f => replying ((Staged.newBoundLiteral f).run t) (.ofRefusable .literal)
  | r => t.perform r

/-- In stages or at once, a request comes to the same. -/
theorem Settled.performStaged_eq (ht : t.Settled) (r : Request) :
    t.performStaged r = t.perform r := by
  cases r with
  | newTimepoint domain => exact congrArg (replying · _) (ht.run_newTimepoint domain)
  | addPermanentEdge s e w => exact congrArg (replying · _) (run_addPermanentEdge s e w t)
  | addConditionalEdge s e w g => exact congrArg (replying · _) (run_addEdge _ t)
  | addConstraint s e w g =>
      cases g with
      | none => exact congrArg (replying · _) (run_addPermanentEdge s e w t)
      | some g => exact congrArg (replying · _) (run_addEdge ⟨s, e, w, .conditional g⟩ t)
  | addDirectedEdge s e w g d => exact congrArg (replying · _) (run_addEdge _ t)
  | addOptionalEdge s e w f b => exact congrArg (replying · _) (ht.run_addOptionalEdge s e w f b)
  | addReifiedEdge l s e w => exact congrArg (replying · _) (run_addReifiedEdge l s e w t)
  | addMaxDelay a b d => exact congrArg (replying · _) (run_addPermanentEdge a b d t)
  | addMinDelay a b d =>
      refine congrArg (replying · _) ?_
      show (int32 (-d)).map _ >>= _ = int32 (-d) >>= _
      cases int32 (-d) with
      | error fault => rfl
      | ok weight => exact run_addPermanentEdge b a weight t
  | addBeforeEq a b => exact congrArg (replying · _) (run_addPermanentEdge b a 0 t)
  | addStrictlyBefore a b => exact congrArg (replying · _) (run_addPermanentEdge b a (-1) t)
  | bindBound l f => exact congrArg (replying · _) (ht.run_bindBound l f)
  | newBoundLiteral f => exact congrArg (replying · _) (ht.run_newBoundLiteral f)
  | _ => rfl

end Theory

end TemporalNetwork
