/-
When a request to set up the problem is accepted.

What a request is given and what it would store can be read off it: the
timepoints and literals that it names, the weights and bounds, and those
that are derived from them, which are the negated delay, the weight of the
opposite edge and the bound of the negated fact. `Request.Valid` says of
these that the first exist and that the second are in range, at the root.
A request is accepted if and only if it is valid, and refused in the state
as it is otherwise. Nothing else plays a part: not whether there is a
conflict, and not whether there will be one.

One minimal delay has no negation with 32 bits. It is not refused: there
is no answer to it.
-/
import TemporalNetwork.Proofs.Theory.Stages

namespace TemporalNetwork

namespace Theory

variable {t t' : Theory} {ts : List Theory} {r : Request} {reply : Reply} {c : Config}
  {rs : List Request}

-- ================================================================== requests

/-- The request adds timepoints, edges or bound literals. -/
def Request.constrains : Request → Bool
  | .newVariable | .newLiteral => false
  | r => r.isSetup

/-- The timepoints that a request names. -/
def Request.timepoints : Request → List Timepoint
  | .addPermanentEdge s e _ | .addConditionalEdge s e _ _ | .addConstraint s e _ _
  | .addDirectedEdge s e _ _ _ | .addOptionalEdge s e _ _ _ | .addReifiedEdge _ s e _
  | .addMaxDelay s e _ | .addMinDelay s e _ | .addBeforeEq s e | .addStrictlyBefore s e => [s, e]
  | .bindBound _ f | .newBoundLiteral f => [f.timepoint]
  | _ => []

/-- The literals that a request names. -/
def Request.literals : Request → List Literal
  | .addConditionalEdge _ _ _ g | .addDirectedEdge _ _ _ g _ => [g]
  | .addConstraint _ _ _ g => g.toList
  | .addOptionalEdge _ _ _ f b => [f, b]
  | .addReifiedEdge l _ _ _ | .bindBound l _ => [l]
  | _ => []

/-- The numbers that a request is given. -/
def Request.numbers : Request → List Int
  | .newTimepoint dom => [dom.lower, dom.upper]
  | .addPermanentEdge _ _ w | .addConditionalEdge _ _ w _ | .addConstraint _ _ w _
  | .addDirectedEdge _ _ w _ _ | .addOptionalEdge _ _ w _ _ | .addReifiedEdge _ _ _ w
  | .addMaxDelay _ _ w | .addMinDelay _ _ w => [w]
  | .bindBound _ f | .newBoundLiteral f => [f.value]
  | _ => []

/-- The weights and bounds that a request would store. -/
def Request.stored : Request → List Int
  | .newTimepoint dom => [dom.lower, dom.upper]
  | .addPermanentEdge _ _ w | .addConditionalEdge _ _ w _ | .addConstraint _ _ w _
  | .addDirectedEdge _ _ w _ _ | .addOptionalEdge _ _ w _ _ | .addMaxDelay _ _ w => [w]
  | .addMinDelay _ _ delay => [-delay]
  | .addBeforeEq _ _ => [0]
  | .addStrictlyBefore _ _ => [-1]
  | .addReifiedEdge _ _ _ w => [w, -w - 1]
  | .bindBound _ f | .newBoundLiteral f => [f.value, f.negation.value]
  | _ => []

/-- All that a request names is there, and all that it would store is in
range. -/
structure Request.Valid (r : Request) (t : Theory) : Prop where
  root : t.level = .root
  timepoint (x : Timepoint) : x ∈ r.timepoints → t.network.hasTimepoint x = true
  literal (l : Literal) : l ∈ r.literals → t.hasVariable l.var = true
  magnitude (k : Int) : k ∈ r.stored → -maxMagnitude ≤ k ∧ k ≤ maxMagnitude
  ordered (dom : Domain) : r = .newTimepoint dom → dom.lower ≤ dom.upper

/-- Up to its sign, the weight of the edge of a fact is its bound. -/
theorem weight_boundEdge (f : BoundFact) (l : Literal) :
    (f.edge l).weight = f.value ∨ -(f.edge l).weight = f.value := by
  cases f with
  | leq x k => exact .inl rfl
  | geq x k => exact .inr (Int.neg_neg k)

/-- Up to its sign, the weight of an edge that is added is one of the
numbers that the request would store. -/
theorem Request.weight_mem_stored {e : Edge} (he : e ∈ r.added reply) :
    e.weight ∈ r.stored ∨ -e.weight ∈ r.stored := by
  have hfact : ∀ (f : BoundFact) (l : Literal), e ∈ [f.edge l, f.negation.edge l.negate] →
      e.weight ∈ [f.value, f.negation.value] ∨ -e.weight ∈ [f.value, f.negation.value] := by
    intro f l he
    rcases List.mem_pair.mp he with rfl | rfl
    · rcases weight_boundEdge f l with hw | hw <;> simp [hw]
    · rcases weight_boundEdge f.negation l.negate with hw | hw <;> simp [hw]
  unfold Request.added at he
  split at he
  case h_13 => exact hfact _ _ he
  case h_14 => exact hfact _ _ he
  case h_15 => exact absurd he List.not_mem_nil
  all_goals
    simp only [List.mem_cons, List.not_mem_nil, or_false] at he
    rcases he with rfl | rfl <;> simp [Request.stored]

-- ================================================================ validation

/-- The checks that a request has to pass. -/
def Request.validation (t : Theory) : Request → Except Refusal Unit
  | .newTimepoint dom => do
    t.checkRoot
    Network.checkDomain dom
  | .addPermanentEdge s e w | .addConstraint s e w none | .addMaxDelay s e w => do
    t.checkRoot
    t.network.checkEdge s e w
  | .addMinDelay s e delay => do
    t.checkRoot
    t.network.checkEdge e s (-delay)
  | .addBeforeEq a b => do
    t.checkRoot
    t.network.checkEdge b a 0
  | .addStrictlyBefore a b => do
    t.checkRoot
    t.network.checkEdge b a (-1)
  | .addConditionalEdge s e w g | .addConstraint s e w (some g) | .addDirectedEdge s e w g _ => do
    t.checkRoot
    t.checkLiteral g
    t.network.checkEdge s e w
  | .addOptionalEdge s e w f b => do
    t.checkRoot
    t.checkLiteral f
    t.checkLiteral b
    t.network.checkEdge s e w
  | .addReifiedEdge l s e w => do
    t.checkRoot
    t.checkLiteral l
    t.network.checkEdge s e w
    Network.checkMagnitude (-w - 1)
  | .bindBound l f => do
    t.checkRoot
    t.checkLiteral l
    t.checkFact f
  | .newBoundLiteral f => do
    t.checkRoot
    t.checkFact f
  | _ => .ok ()

/-- The request was refused and nothing was done, or it passed all checks
and was not refused. -/
def Validated (t t' : Theory) (validation : Except Refusal Unit) (reply : Reply) : Prop :=
  (∃ refusal, validation = .error refusal ∧ reply = .refused refusal ∧ t' = t) ∨
    validation = .ok () ∧ ∀ refusal, reply ≠ .refused refusal

/-- A request that is validated first is refused by its validation only. -/
theorem validated_of_replying {α : Type} {validation : Except Refusal Unit}
    {commit : Checked (Theory × α)} {accepted : α → Reply}
    (haccepted : ∀ a refusal, accepted a ≠ .refused refusal)
    (h : replying (t.attempt validation commit) (.ofRefusable accepted) = .ok (t', reply)) :
    Validated t t' validation reply := by
  obtain ⟨result, hrun, hreply⟩ := replying_eq_ok.mp h
  unfold attempt at hrun
  cases validation with
  | error refusal =>
      cases hrun
      exact .inl ⟨refusal, rfl, hreply.symm, rfl⟩
  | ok u =>
      obtain ⟨⟨t₁, a⟩, -, heq⟩ := Checked.map_eq_ok.mp hrun
      cases heq
      refine .inr ⟨rfl, fun refusal hrefused => ?_⟩
      exact haccepted a refusal (hreply.trans hrefused)

/-- Whatever a request is, its checks decide about it. -/
theorem validated_perform (hr : r.constrains = true) (h : t.perform r = .ok (t', reply)) :
    Validated t t' (r.validation t) reply := by
  have hedge : ∀ (id : EdgeId) refusal, Reply.edge id ≠ .refused refusal := by
    intro id refusal heq
    cases heq
  cases r with
  | newTimepoint dom => exact validated_of_replying (fun _ _ heq => by cases heq) h
  | addPermanentEdge s e w => exact validated_of_replying hedge h
  | addConditionalEdge s e w g => exact validated_of_replying hedge h
  | addConstraint s e w g =>
      cases g with
      | none => exact validated_of_replying hedge h
      | some g => exact validated_of_replying hedge h
  | addDirectedEdge s e w g d => exact validated_of_replying hedge h
  | addOptionalEdge s e w f b => exact validated_of_replying (fun _ _ heq => by cases heq) h
  | addReifiedEdge l s e w => exact validated_of_replying hedge h
  | addMaxDelay a b delay => exact validated_of_replying hedge h
  | addMinDelay a b delay =>
      obtain ⟨result, hrun, hreply⟩ := replying_eq_ok.mp h
      obtain ⟨weight, hweight, hadd⟩ := Checked.bind_eq_ok.mp hrun
      obtain ⟨-, rfl⟩ := int32_eq_ok.mp hweight
      exact validated_of_replying hedge (replying_eq_ok.mpr ⟨result, hadd, hreply⟩)
  | addBeforeEq a b => exact validated_of_replying hedge h
  | addStrictlyBefore a b => exact validated_of_replying hedge h
  | bindBound l f => exact validated_of_replying (fun _ _ heq => by cases heq) h
  | newBoundLiteral f => exact validated_of_replying (fun _ _ heq => by cases heq) h
  | _ => cases hr

/-- A request that is refused leaves the theory as it is. -/
theorem eq_of_perform_refused {refusal : Refusal} (h : t.perform r = .ok (t', .refused refusal)) :
    t' = t := by
  by_cases hr : r.constrains = true
  · rcases validated_perform hr h with ⟨_, -, -, hsame⟩ | ⟨-, haccepted⟩
    · exact hsame
    · exact absurd rfl (haccepted refusal)
  · -- no other request is ever refused
    cases r with
    | newVariable => cases h
    | newLiteral => cases h
    | configure c => cases h
    | assign l =>
        obtain ⟨result, -, hreply⟩ := replying_eq_ok.mp h
        rcases result with (_ | _) | _ <;> cases hreply
    | propagate =>
        obtain ⟨u, -, heq⟩ := Checked.map_eq_ok.mp h
        obtain ⟨-, hreply⟩ := Prod.mk.inj heq
        cases hverdict : u.verdict with
        | ok _ => rw [hverdict] at hreply; cases hreply
        | error k => rw [hverdict] at hreply; cases hreply
    | pushCheckpoint =>
        obtain ⟨u, -, heq⟩ := Checked.map_eq_ok.mp h
        cases heq
    | backtrack level =>
        obtain ⟨result, -, hreply⟩ := replying_eq_ok.mp h
        cases result <;> cases hreply
    | popTo level =>
        obtain ⟨result, -, hreply⟩ := replying_eq_ok.mp h
        cases result <;> cases hreply
    | restoreLast =>
        obtain ⟨u, -, heq⟩ := Checked.map_eq_ok.mp h
        cases heq
    | reset =>
        obtain ⟨u, -, heq⟩ := Checked.map_eq_ok.mp h
        cases heq
    | _ => exact absurd rfl hr

/-- The checks ask for no less and no more than is needed. -/
theorem Request.validation_eq_ok (hr : r.constrains = true) :
    r.validation t = .ok () ↔ r.Valid t := by
  have hvalid : r.Valid t ↔ t.level = .root ∧
      (∀ x ∈ r.timepoints, t.network.hasTimepoint x = true) ∧
      (∀ l ∈ r.literals, t.hasVariable l.var = true) ∧
      (∀ k ∈ r.stored, -maxMagnitude ≤ k ∧ k ≤ maxMagnitude) ∧
      ∀ dom, r = .newTimepoint dom → dom.lower ≤ dom.upper :=
    ⟨fun h => ⟨h.root, h.timepoint, h.literal, h.magnitude, h.ordered⟩,
      fun ⟨hroot, htimepoint, hliteral, hmagnitude, hordered⟩ =>
        ⟨hroot, htimepoint, hliteral, hmagnitude, hordered⟩⟩
  rw [hvalid]
  cases r with
  | addConstraint s e w g =>
      cases g <;> simp [Request.validation, Request.timepoints, Request.literals, Request.stored,
        checks_eq_ok, checkRoot_eq_ok, checkLiteral_eq_ok, checkEdge_eq_ok] <;> tauto
  | newTimepoint dom =>
      simp [Request.validation, Request.timepoints, Request.literals, Request.stored,
        checks_eq_ok, checkRoot_eq_ok, checkDomain_eq_ok]
      tauto
  | _ =>
      first
      | exact absurd hr Bool.false_ne_true
      | simp [Request.validation, Request.timepoints, Request.literals, Request.stored,
          checks_eq_ok, checkRoot_eq_ok, checkLiteral_eq_ok, checkEdge_eq_ok, checkFact_eq_ok,
          checkMagnitude_eq_ok]
        try tauto

-- ================================================================ acceptance

/-- Requests to set up the problem are answered, in stages as well as at
once, for all numbers of 32 bits but one minimal delay: they are accepted
if and only if they are valid, and what is refused is not done. -/
theorem exists_performStaged (h : (initial c).performAll rs = .ok t) (hr : r.constrains = true)
    (hnumbers : ∀ k ∈ r.numbers, FitsInt32 k)
    (hdelay : ∀ a b, r ≠ .addMinDelay a b (-2147483648)) :
    ∃ t' reply, t.performStaged r = .ok (t', reply) ∧ t.perform r = .ok (t', reply) ∧
      ((∀ refusal, reply ≠ .refused refusal) ↔ r.Valid t) ∧ (¬ r.Valid t → t' = t) := by
  obtain ⟨ts, hts⟩ := exists_stack_of_performAll h
  have hanswerable : r.Answerable t := by
    cases r with
    | addMinDelay a b delay =>
        have hfits : FitsInt32 delay := hnumbers delay List.mem_cons_self
        have hne : delay ≠ -2147483648 := fun heq => hdelay a b (heq ▸ rfl)
        show FitsInt32 (-delay)
        unfold FitsInt32 at hfits ⊢
        omega
    | restoreLast => exact absurd hr Bool.false_ne_true
    | _ => exact trivial
  obtain ⟨⟨t', reply⟩, hperform⟩ := hts.exists_perform hanswerable
  have hstaged := (hts.settled.performStaged_eq r).trans hperform
  have hvalid := Request.validation_eq_ok (t := t) hr
  refine ⟨t', reply, hstaged, hperform, ?_⟩
  rcases validated_perform hr hperform with ⟨refusal, hv, rfl, rfl⟩ | ⟨hv, haccepted⟩
  · have hnot : ¬ r.Valid t' := fun hc => nomatch hv.symm.trans (hvalid.mpr hc)
    exact ⟨⟨fun hall => absurd rfl (hall refusal), fun hc => absurd hc hnot⟩, fun _ => rfl⟩
  · exact ⟨⟨fun _ => hvalid.mp hv, fun _ => haccepted⟩, fun hc => absurd (hvalid.mp hv) hc⟩

/-- Under a conflict at the root, a literal is made equivalent to a
constraint whose opposite is just in range. -/
theorem exists_performStaged_inconsistent :
    ∃ t, (initial .standard).performAll
        [.newTimepoint ⟨0, 10⟩, .newVariable, .addPermanentEdge ⟨1⟩ .origin (-20)] = .ok t ∧
      t.isConsistent = false ∧ ∃ t' reply,
        t.performStaged (.addReifiedEdge ⟨⟨0⟩, true⟩ .origin ⟨1⟩ (-maxMagnitude))
          = .ok (t', reply) ∧ ∀ refusal, reply ≠ .refused refusal := by
  have hrun : ((initial .standard).performAll
      [.newTimepoint ⟨0, 10⟩, .newVariable, .addPermanentEdge ⟨1⟩ .origin (-20)]).answers (fun t =>
        (t.isConsistent == false) && decide (t.level = .root) && t.network.hasTimepoint .origin &&
          t.network.hasTimepoint ⟨1⟩ && t.hasVariable ⟨0⟩) = true := by decide +kernel
  obtain ⟨t, ht, hstate⟩ := Checked.exists_of_answers hrun
  simp only [Bool.and_eq_true, beq_iff_eq, decide_eq_true_eq] at hstate
  obtain ⟨⟨⟨⟨hverdict, hroot⟩, horigin⟩, htimepoint⟩, hvar⟩ := hstate
  obtain ⟨t', reply, hstaged, -, hiff, -⟩ :=
    exists_performStaged (r := .addReifiedEdge ⟨⟨0⟩, true⟩ .origin ⟨1⟩ (-maxMagnitude)) ht rfl
      (by decide) (fun a b heq => by cases heq)
  refine ⟨t, ht, hverdict, t', reply, hstaged, hiff.mpr ⟨hroot, ?_, ?_, ?_, fun _ heq => ?_⟩⟩
  · exact List.forall_mem_cons.mpr ⟨horigin, List.forall_mem_singleton.mpr htimepoint⟩
  · exact List.forall_mem_singleton.mpr hvar
  · decide
  · cases heq

/-- The least number of 32 bits has no negation, and as a minimal delay it
has no answer. -/
theorem performStaged_eq_overflow :
    FitsInt32 (-2147483648) ∧ ∃ t, (initial .standard).performAll [.newTimepoint ⟨0, 10⟩] = .ok t ∧
      t.performStaged (.addMinDelay .origin ⟨1⟩ (-2147483648)) = .error .overflow ∧
      t.perform (.addMinDelay .origin ⟨1⟩ (-2147483648)) = .error .overflow := by
  have hrun : ((initial .standard).performAll [.newTimepoint ⟨0, 10⟩]).answers (fun _ => true)
      = true := by decide +kernel
  obtain ⟨t, ht, -⟩ := Checked.exists_of_answers hrun
  exact ⟨by decide, t, ht, rfl, rfl⟩

end Theory

end TemporalNetwork
